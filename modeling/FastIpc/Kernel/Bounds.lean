import FastIpc.Kernel.Machine

/-!
# Accesses to the ring table

`createbuf`, `closebuf` and `ringbufCleanup` find their slot by search loops.  An
access outside the table is the fault `outOfBounds` of the model; everything else these
functions call works on page tables and the allocator and can only panic.

Main results:

- Theorem `keepsTable_mapper`: mapping a ring stays in its slot.
- Theorem `ring_table_in_bounds`: which calls stay in the table.
-/

namespace FastIpc
namespace Kernel

open Foundation FaultM

/-- A fault that stands for an access outside the ring table. -/
def Fault.IsOutOfBounds : Fault → Prop
  | .outOfBounds _ => True
  | _ => False

/-- Code that never leaves the ring table. -/
abbrev KeepsTable {σ α : Type} (x : FaultM Fault σ α) : Prop := Avoids Fault.IsOutOfBounds x

/-! ## Page tables -/

theorem keepsTable_panic {σ α : Type} (message : String) :
    KeepsTable (throw (.panic message) : FaultM Fault σ α) :=
  .throw fun h => h

theorem keepsTable_kalloc : KeepsTable kalloc :=
  .of_ok fun s => by
    obtain ⟨p, t, hrun⟩ := exists_kalloc s
    exact ⟨_, hrun⟩

variable {doFree newmap : Bool} {im : Image} {a n pa pagetable start va : Nat} {p : ProcId}
  {j : Slot}

theorem keepsTable_kfree : KeepsTable (kfree im pa) := by
  intro s e he
  unfold kfree at he
  split at he
  next =>
    cases he
    exact fun h => h
  next => cases he

theorem keepsTable_loadWord : KeepsTable (loadWord a) := .of_ok fun _ => ⟨_, rfl⟩

theorem keepsTable_storeWord {w : Nat} : KeepsTable (storeWord a w) := .of_ok fun _ => ⟨_, rfl⟩

theorem keepsTable_walkFrom {alloc : Bool} {level : Nat} :
    KeepsTable (walkFrom va alloc level pagetable) := by
  induction level generalizing pagetable with
  | zero => exact .pure _
  | succ level ih =>
    refine .bind keepsTable_loadWord fun entry => ?_
    split
    next => exact ih
    next =>
      split
      next =>
        refine .bind keepsTable_kalloc fun page => ?_
        split
        next => exact .pure _
        next =>
          refine .bind (.of_ok fun _ => ⟨_, rfl⟩) fun _ => ?_
          exact .bind keepsTable_storeWord fun _ => ih
      next => exact .pure _

theorem keepsTable_walk {alloc : Bool} : KeepsTable (walk pagetable va alloc) := by
  unfold walk
  split
  next => exact keepsTable_panic _
  next => exact keepsTable_walkFrom

theorem keepsTable_walkaddr : KeepsTable (walkaddr pagetable va) := .of_ok fun _ => ⟨_, walkaddr_eq⟩

theorem keepsTable_mapLoop {perm : Nat} : KeepsTable (mapLoop pagetable perm n a pa) := by
  induction n generalizing a pa with
  | zero =>
    unfold mapLoop
    refine .bind keepsTable_walk fun found => ?_
    cases found with
    | none => exact .pure _
    | some pte =>
      refine .bind keepsTable_loadWord fun entry => ?_
      split
      next => exact keepsTable_panic _
      next => exact .bind keepsTable_storeWord fun _ => .pure _
  | succ n ih =>
    unfold mapLoop
    refine .bind keepsTable_walk fun found => ?_
    cases found with
    | none => exact .pure _
    | some pte =>
      refine .bind keepsTable_loadWord fun entry => ?_
      split
      next => exact keepsTable_panic _
      next => exact .bind keepsTable_storeWord fun _ => ih

theorem keepsTable_mappages {size perm : Nat} : KeepsTable (mappages pagetable va size pa perm) :=
  keepsTable_mapLoop

theorem keepsTable_unmapPage : KeepsTable (unmapPage im pagetable doFree a) := by
  refine .bind keepsTable_walk fun found => ?_
  cases found with
  | none => exact keepsTable_panic _
  | some pte =>
    refine .bind keepsTable_loadWord fun entry => ?_
    split
    next => exact keepsTable_panic _
    next =>
      split
      next => exact keepsTable_panic _
      next =>
        cases doFree with
        | false => exact keepsTable_storeWord
        | true => exact .bind keepsTable_kfree fun _ => keepsTable_storeWord

theorem keepsTable_unmapLoop : KeepsTable (unmapLoop im pagetable doFree n a) := by
  induction n generalizing a with
  | zero => exact .pure _
  | succ n ih => exact .bind keepsTable_unmapPage fun _ => ih

theorem keepsTable_uvmunmap {npages : Nat} :
    KeepsTable (uvmunmap im pagetable va npages doFree) := by
  unfold uvmunmap
  split
  next => exact keepsTable_panic _
  next => exact keepsTable_unmapLoop

theorem keepsTable_copyoutLoop {rounds dstva src : Nat} {bytes : List (BitVec 8)} :
    KeepsTable (copyoutLoop pagetable rounds dstva src bytes) := by
  induction rounds generalizing dstva src bytes with
  | zero => exact .pure _
  | succ rounds ih =>
    unfold copyoutLoop
    split
    next => exact .pure _
    next =>
      refine .bind keepsTable_walkaddr fun pa0 => ?_
      split
      next => exact .pure _
      next => exact .bind (.of_ok fun _ => ⟨_, rfl⟩) fun _ => ih

/-! ## Rings -/

theorem keepsTable_findWindow : KeepsTable (findWindow pagetable n start) := by
  induction n generalizing start with
  | zero => exact .pure _
  | succ n ih =>
    refine .bind keepsTable_walkaddr fun pa => ?_
    split
    next =>
      split
      next => exact .pure _
      next => exact ih
    next => exact .pure _

theorem keepsTable_undoMap : KeepsTable (undoMap im pagetable start n) := by
  induction n with
  | zero => exact .pure _
  | succ n ih => exact .bind keepsTable_uvmunmap fun _ => ih

theorem keepsTable_allocData {i mem : Nat} : KeepsTable (allocData j newmap i mem) := by
  unfold allocData
  split
  next => exact .bind (.zoom keepsTable_kalloc) fun _ => .bind (.modify _) fun _ => .pure _
  next => exact .pure _

theorem keepsTable_mapRing {i mem : Nat} : KeepsTable (mapRing im p j newmap start n i mem) := by
  induction n generalizing i mem with
  | zero => exact .pure _
  | succ n ih =>
    refine .bind keepsTable_allocData fun mem => .bind .get fun k => ?_
    refine .bind (.zoom keepsTable_mappages) fun res => ?_
    split
    next =>
      refine .bind (.zoom keepsTable_undoMap) fun _ => ?_
      split
      next => exact .bind (.zoom keepsTable_kfree) fun _ => .pure _
      next => exact .pure _
    next => exact ih

/-- Mapping a ring stays in its slot. -/
theorem keepsTable_mapper : KeepsTable (processSpaceMapper im p j newmap) := by
  refine .bind .get fun k => .bind (.zoom keepsTable_findWindow) fun found => ?_
  cases found with
  | none => exact .pure _
  | some start =>
    refine .bind (.modify _) fun _ => .bind keepsTable_mapRing fun res => ?_
    split
    next => exact .pure _
    next =>
      have hbook : KeepsTable (allocBook j newmap) := by
        unfold allocBook
        split
        next => exact .bind (.zoom keepsTable_kalloc) fun _ => .modify _
        next => exact .pure _
      refine .bind hbook fun _ => .bind .get fun k => ?_
      refine .bind (.zoom keepsTable_mappages) fun res => ?_
      split
      next => exact keepsTable_panic _
      next => exact .pure _

theorem keepsTable_attachRing {d : RingEnd} : KeepsTable (attachRing im p j d) := by
  refine .bind .get fun k => ?_
  split
  next => exact .pure _
  next =>
    refine .bind (.modify _) fun _ => .bind keepsTable_mapper fun res => ?_
    split
    next => exact .bind (.modify _) fun _ => .pure _
    next => exact .pure _

theorem keepsTable_makeRing {straddr : CString} {d : RingEnd} :
    KeepsTable (makeRing im p straddr j d) := by
  refine .bind (.modify _) fun _ => .bind keepsTable_mapper fun res => ?_
  split
  next => exact .bind (.modify _) fun _ => .pure _
  next => exact .pure _

theorem keepsTable_publishRing {retvaddr : Nat} : KeepsTable (publishRing p j retvaddr) :=
  .bind .get fun _ => .bind (.zoom keepsTable_copyoutLoop) fun _ => .modify _

theorem keepsTable_unmapRing {last : Bool} {d : Nat} :
    KeepsTable (unmapRing im pagetable last d) := by
  have heach : ∀ doFree n d, KeepsTable (unmapEach im pagetable doFree n d) := by
    intro doFree n
    induction n with
    | zero => exact fun _ => .pure _
    | succ n ih => exact fun d => .bind keepsTable_uvmunmap fun _ => ih _
  exact .bind (heach _ _ _) fun _ => .bind (heach _ _ _) fun _ => keepsTable_uvmunmap

/-! ## Calls -/

/-- A call does not leave the ring table. -/
def InBounds {α : Type} (x : KernelM α) (k : KernelState) : Prop :=
  ∀ i, x k ≠ .error (.outOfBounds i)

theorem Avoids.inBounds {α : Type} {x : KernelM α} (h : KeepsTable x) (k : KernelState) :
    InBounds x k := fun _ hi =>
  h k _ hi trivial

/-- `createbuf` finds a slot: it refuses the end, or the name is in the table, or a slot is
not in use. -/
def FindsSlot (k : KernelState) (straddr : CString) (opdesc : Int) : Prop :=
  (opdesc < 0 ∨ 1 < opdesc) ∨ findName k straddr ≠ none ∨ findFree k ≠ none

section Calls

variable {im : Image} {p : ProcId} {k : KernelState} {straddr : CString} {opdesc : Int}
  {retvaddr : Nat}

/-- The index that `createbuf` uses lies in the table. -/
theorem createIndex_eq (hfinds : findName k straddr ≠ none ∨ findFree k ≠ none) : ∃ j : Slot,
    (if 0 < ((findName k straddr).map fun i => (i.val : Int)).getD (-1) then
        ((findName k straddr).map fun i => (i.val : Int)).getD (-1)
      else ((findFree k).map fun i => (i.val : Int)).getD
        (((findName k straddr).map fun i => (i.val : Int)).getD (-1))) = (j.val : Int) := by
  cases hname : findName k straddr with
  | some i =>
    simp only [Option.map_some, Option.getD_some]
    split
    next => exact ⟨i, rfl⟩
    next hzero =>
      cases findFree k with
      | some j => exact ⟨j, rfl⟩
      -- The ring found in slot 0 is used again.
      | none => exact ⟨i, rfl⟩
  | none =>
    simp only [Option.map_none, Option.getD_none, show ¬(0 < (-1 : Int)) by decide, if_false]
    cases hfree : findFree k with
    | some j => exact ⟨j, rfl⟩
    | none => exact absurd hfree (hfinds.resolve_left fun h => h hname)

/-- `createbuf` stays in the table exactly if it finds a slot. -/
theorem createbuf_inBounds_iff :
    InBounds (createbuf im p straddr opdesc retvaddr) k ↔ FindsSlot k straddr opdesc := by
  by_cases hop : opdesc < 0 ∨ 1 < opdesc
  · refine iff_of_true (fun i hi => ?_) (.inl hop)
    rw [createbuf_invalid hop] at hi
    cases hi
  by_cases hfinds : findName k straddr ≠ none ∨ findFree k ≠ none
  · refine iff_of_true (fun i hi => ?_) (.inr hfinds)
    obtain ⟨j, hj⟩ := createIndex_eq hfinds
    rw [createbuf, if_neg hop, bind_of_ok (get_apply k)] at hi
    simp only [hj, slotAt_val, pure_bind] at hi
    have hpublish : ∀ done : Bool, KeepsTable (if done = true then do
        publishRing p j retvaddr
        return (if (findName k straddr).isSome then 0 else 1)
      else return -1 : KernelM Int) := by
      intro done
      split
      next => exact .bind keepsTable_publishRing fun _ => .pure _
      next => exact .pure _
    split at hi
    next => exact Avoids.inBounds (.bind keepsTable_attachRing hpublish) k i hi
    next => exact Avoids.inBounds (.bind keepsTable_makeRing hpublish) k i hi
  · refine iff_of_false (fun hin => ?_) fun hor => hor.elim hop hfinds
    rw [not_or, not_not, not_not] at hfinds
    exact hin (-1) (createbuf_full hop hfinds.1 hfinds.2)

/-- `closebuf` stays in the table exactly if it finds the name. -/
theorem closebuf_inBounds_iff :
    InBounds (closebuf im p straddr opdesc) k ↔ findName k straddr ≠ none := by
  cases hname : findName k straddr with
  | none => exact iff_of_false (fun hin => hin maxRingbufs (closebuf_unknown hname)) fun h => h rfl
  | some j =>
    refine iff_of_true (fun i hi => ?_) (by simp)
    rw [closebuf, bind_of_ok (get_apply k)] at hi
    simp only [hname] at hi
    exact Avoids.inBounds (.bind (.set _) fun _ => .bind (.zoom keepsTable_unmapRing) fun _ =>
      .bind (.modify _) fun _ => .pure _) k i hi

/-- `ringbufCleanup` looks for names that are in the table. -/
theorem cleanupEnd_keepsTable (im : Image) (p : ProcId) (i : Slot) (e : RingEnd) :
    KeepsTable (cleanupEnd im p i e) := by
  intro k fault hfault hout
  rw [cleanupEnd, bind_of_ok (get_apply k)] at hfault
  split at hfault
  next =>
    have hname : findName k (k.ringbufs i).name ≠ none := by
      intro hnone
      have hself := List.find?_eq_none.mp hnone i (List.mem_finRange i)
      simp [strcmp_eq_zero_iff.mpr] at hself
    cases hrun : closebuf im p (k.ringbufs i).name e.val k with
    | error fault' =>
      rw [bind_of_error hrun] at hfault
      cases hfault
      cases fault with
      | outOfBounds n => exact closebuf_inBounds_iff.mpr hname n hrun
      | _ => exact hout
    | ok done =>
      rw [bind_of_ok hrun] at hfault
      cases hfault
  next => cases hfault

theorem ringbufCleanup_keepsTable (im : Image) (p : ProcId) : KeepsTable (ringbufCleanup im p) := by
  have hloop : ∀ slots, KeepsTable (cleanupLoop im p slots) := by
    intro slots
    induction slots with
    | nil => exact .pure _
    | cons i rest ih =>
      exact .bind (cleanupEnd_keepsTable im p i 0) fun _ =>
        .bind (cleanupEnd_keepsTable im p i 1) fun _ => ih
  exact .bind (hloop _) fun _ => .pure _

/-- In every state of the kernel: `createbuf` stays in the ring table exactly if it finds a
slot, `closebuf` exactly if it finds the name, and `ringbufCleanup` always. -/
theorem ring_table_in_bounds (im : Image) (p : ProcId) (k : KernelState) (straddr : CString)
    (opdesc : Int) (retvaddr : Nat) :
    (InBounds (createbuf im p straddr opdesc retvaddr) k ↔ FindsSlot k straddr opdesc) ∧
      (InBounds (closebuf im p straddr opdesc) k ↔ findName k straddr ≠ none) ∧
      InBounds (ringbufCleanup im p) k :=
  ⟨createbuf_inBounds_iff, closebuf_inBounds_iff,
    Avoids.inBounds (ringbufCleanup_keepsTable im p) k⟩

end Calls

/-- Before any ring is made, closing one leaves the table. -/
theorem closebuf_leaves_table : Started smallImage smallStart ∧
    closebuf smallImage 0 ringName 0 smallStart = .error (.outOfBounds 10) := by
  refine ⟨smallStart_started, closebuf_unknown ?_⟩
  rw [findName, List.find?_eq_none]
  intro i _
  rw [smallStart_started.kernelInv.2.1 i]
  decide

end Kernel
end FastIpc
