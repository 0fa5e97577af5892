import FastIpc.Kernel.Bounds

/-!
# The outcomes of creating a ring

What `createbuf` does with any ring table, for a process whose page-table page for the
windows exists.  The table need not be one that the calls of a kernel have produced: its counts,
names, process numbers and pages are arbitrary.

Main results:

- Theorem `createbuf_of_opens`: when the call succeeds.
- Theorem `createbuf_of_losesSlot`: when it fails and leaves a slot counted.
- Theorem `createbuf_otherwise`: in all other cases it changes nothing.
-/

namespace FastIpc
namespace Kernel

open Foundation FaultM

/-! ## Conditions on the state before the call -/

/-- The pages that a window would show are not mapped. -/
def WindowFree (m : Memory) (r : Nat) (w : Fin 10) : Prop :=
  ∀ i < 33, leaf m r (window w + i * pgSize) &&& pteV = 0

/-- The end of the ring with this name is in use. -/
def EndTaken (k : KernelState) (straddr : CString) (opdesc : Int) : Prop :=
  ∃ j, findName k straddr = some j ∧
    ((k.ringbufs j).pidsRW (ringEndOf opdesc) ≠ 0 ∨ (k.ringbufs j).refcount < 0)

/-- The call has a slot and a window for the ring. -/
structure Opens (k : KernelState) (p : ProcId) (straddr : CString) (opdesc : Int) : Prop where
  valid : ¬(opdesc < 0 ∨ 1 < opdesc)
  slot : FindsSlot k straddr opdesc
  open_end : attaches k straddr = true → ¬EndTaken k straddr opdesc
  window : ∃ w, firstWindow k.ram.mem (k.proc p).pagetable = some w ∧
    WindowFree k.ram.mem (k.proc p).pagetable w

/-- The call has a slot for a new ring, but no window. -/
structure LosesSlot (k : KernelState) (p : ProcId) (straddr : CString) (opdesc : Int) : Prop where
  valid : ¬(opdesc < 0 ∨ 1 < opdesc)
  slot : FindsSlot k straddr opdesc
  new : attaches k straddr = false
  window : firstWindow k.ram.mem (k.proc p).pagetable = none

/-- The pages noted in the ring table are physical addresses. -/
def PagesAddressed (k : KernelState) : Prop :=
  ∀ j, (∀ i, (k.ringbufs j).bufPA i < 2 ^ 56) ∧ (k.ringbufs j).book < 2 ^ 56

/-! ## Handing out the address -/

theorem exists_copyoutLoop (r rounds dstva src : Nat) (bytes : List (BitVec 8)) (s : Ram) :
    ∃ res t, copyoutLoop r rounds dstva src bytes s = .ok (res, t) := by
  induction rounds generalizing dstva src bytes s with
  | zero => exact ⟨0, s, rfl⟩
  | succ rounds ih =>
    unfold copyoutLoop
    split
    next => exact ⟨0, s, rfl⟩
    next =>
      rw [bind_of_ok walkaddr_eq]
      split
      next => exact ⟨-1, s, rfl⟩
      next => exact ih _ _ _ _

/-- Handing out the address does not touch the ring table. -/
theorem exists_publishRing (p : ProcId) (j : Slot) (retvaddr : Nat) (k : KernelState) :
    ∃ k', publishRing p j retvaddr k = .ok ((), k') ∧ k'.ringbufs = k.ringbufs := by
  obtain ⟨res, t, hcopy⟩ : ∃ res t, copyout (k.proc p).pagetable retvaddr 0
      (wordBytes (k.ringbufs j).vabuf) k.ram = .ok (res, t) := exists_copyoutLoop ..
  refine ⟨({ k with ram := t }).setProc p fun q => { q with validRingBuf := 1 }, ?_, rfl⟩
  rw [publishRing, bind_of_ok (get_apply k), bind_of_ok (onRam_of_ok hcopy)]
  rfl

/-! ## The outcomes -/

section Outcomes

variable {im : Image} {own : Nat → Role} {roots : Nat → Prop} {k : KernelState} {p : ProcId}
  {straddr : CString} {opdesc : Int} {retvaddr nd : Nat} {j : Slot} {w : Fin 10}

/-- A ring that is counted once more is not the same. -/
theorem ringbufs_ne_of_counted {k' : KernelState}
    (h : (k'.ringbufs j).refcount = (k.ringbufs j).refcount + 1) : k'.ringbufs ≠ k.ringbufs := by
  intro heq
  rw [heq] at h
  omega

section

variable (h : Owned im own roots k.ram) (hr : roots (k.proc p).pagetable)
  (htop : table k.ram.mem (k.proc p).pagetable [255, 511] = some nd)
  (hw : firstWindow k.ram.mem (k.proc p).pagetable = some w)
include h hr htop hw

/-- The mapper with a window whose pages are not mapped. -/
theorem mapper_of_free (hfree : WindowFree k.ram.mem (k.proc p).pagetable w) (newmap : Bool)
    (b : Ringbuf) (hpages : newmap = false → (∀ i, b.bufPA i < 2 ^ 56) ∧ b.book < 2 ^ 56) :
    ∃ k', processSpaceMapper im p j newmap (k.setSlot j fun _ => b) = .ok (0, k') ∧
      (k'.ringbufs j).refcount = b.refcount := by
  obtain ⟨k', own', hrun, hmapped⟩ := processSpaceMapper_of_empty (k := k.setSlot j fun _ => b)
    h hr rfl htop hw hfree (by rwa [KernelState.setSlot_same])
  refine ⟨k', hrun, ?_⟩
  rw [hmapped.slot, KernelState.setSlot_same]

theorem mapper_of_not_free (hfree : ¬WindowFree k.ram.mem (k.proc p).pagetable w) (newmap : Bool)
    (b : Ringbuf) (hpages : newmap = false → ∀ i, b.bufPA i < 2 ^ 56) :
    processSpaceMapper im p j newmap (k.setSlot j fun _ => b) = .error (.panic "remap") := by
  -- The first mapped page stops the loop.
  have hsome : ∃ i, i < 33 ∧
      leaf k.ram.mem (k.proc p).pagetable (window w + i * pgSize) &&& pteV ≠ 0 := by
    simpa [WindowFree] using hfree
  refine processSpaceMapper_remap (k := k.setSlot j fun _ => b) (i := Nat.find hsome) h hr rfl htop
    hw (Nat.find_spec hsome).1 (fun i' hi' => ?_) (Nat.find_spec hsome).2 fun _ hnew => ?_
  · by_contra hvalid
    exact Nat.find_min hsome hi' ⟨hi'.trans (Nat.find_spec hsome).1, hvalid⟩
  · rw [KernelState.setSlot_same]
    exact hpages hnew

end

theorem exists_makeSlot (hop : ¬(opdesc < 0 ∨ 1 < opdesc)) (hslot : FindsSlot k straddr opdesc) :
    ∃ j, makeSlot k straddr = some j := by
  rw [← Option.isSome_iff_exists, makeSlot, Option.isSome_or]
  rcases hslot.resolve_left hop with hname | hfree
  · simp [Option.isSome_iff_ne_none.mpr hname]
  · simp [Option.isSome_iff_ne_none.mpr hfree]

theorem val_eq_zero_of_attaches (h : attaches k straddr = false) (i : Slot)
    (hi : findName k straddr = some i) : i.val = 0 := by
  by_contra hne
  rw [attaches_iff.mpr ⟨i, hi, Nat.pos_of_ne_zero hne⟩] at h
  cases h

/-- An end of a ring that can be opened is opened. -/
theorem createbuf_of_opens (h : Owned im own roots k.ram) (hr : roots (k.proc p).pagetable)
    (htop : table k.ram.mem (k.proc p).pagetable [255, 511] = some nd) (hpages : PagesAddressed k)
    (hopens : Opens k p straddr opdesc) (retvaddr : Nat) :
    ∃ res k', createbuf im p straddr opdesc retvaddr k = .ok (res, k') ∧ res ≠ -1 ∧
      k'.ringbufs ≠ k.ringbufs := by
  obtain ⟨hop, hslot, hend, w, hw, hfree⟩ := hopens
  cases hattaches : attaches k straddr with
  | true =>
    obtain ⟨j, hfound, hj⟩ := attaches_iff.mp hattaches
    have hopen : (k.ringbufs j).pidsRW (ringEndOf opdesc) = 0 ∧ 0 ≤ (k.ringbufs j).refcount := by
      by_contra hnot
      refine hend hattaches ⟨j, hfound, ?_⟩
      rw [Decidable.not_and_iff_not_or_not] at hnot
      exact hnot.imp_right fun hneg => by omega
    obtain ⟨k1, hmap, hcount⟩ := mapper_of_free (j := j) h hr htop hw hfree false
      ((k.ringbufs j).attaching (ringEndOf opdesc) (k.proc p).pid) fun _ => hpages j
    obtain ⟨k', hpublish, hrings⟩ := exists_publishRing p j retvaddr k1
    refine ⟨0, k', (maps_attach hop hfound hj hopen.1 hopen.2).of_ok hmap hpublish, by decide,
      ringbufs_ne_of_counted (j := j) ?_⟩
    rw [hrings, hcount]
    rfl
  | false =>
    obtain ⟨j, hj⟩ := exists_makeSlot hop hslot
    obtain ⟨k1, hmap, hcount⟩ := mapper_of_free (j := j) h hr htop hw hfree true
      ((k.ringbufs j).making straddr (ringEndOf opdesc) (k.proc p).pid) (by simp)
    obtain ⟨k', hpublish, hrings⟩ := exists_publishRing p j retvaddr k1
    refine ⟨_, k', (maps_make hop (val_eq_zero_of_attaches hattaches) hj).of_ok hmap hpublish,
      by split <;> decide, ringbufs_ne_of_counted (j := j) ?_⟩
    rw [hrings, hcount]
    rfl

/-- Without a window the slot of a new ring stays counted. -/
theorem createbuf_of_losesSlot (hloses : LosesSlot k p straddr opdesc) (im : Image)
    (retvaddr : Nat) :
    ∃ k', createbuf im p straddr opdesc retvaddr k = .ok (-1, k') ∧ k'.ringbufs ≠ k.ringbufs := by
  obtain ⟨hop, hslot, hnew, hw⟩ := hloses
  obtain ⟨j, hj⟩ := exists_makeSlot hop hslot
  refine ⟨_, createbuf_make_none hop (val_eq_zero_of_attaches hnew) hj hw,
    ringbufs_ne_of_counted (j := j) ?_⟩
  rw [KernelState.setSlot_same]

/-- In all other cases the call fails without a trace, or stops the machine. -/
theorem createbuf_otherwise (h : Owned im own roots k.ram) (hr : roots (k.proc p).pagetable)
    (htop : table k.ram.mem (k.proc p).pagetable [255, 511] = some nd) (hpages : PagesAddressed k)
    (hslot : FindsSlot k straddr opdesc) (hopens : ¬Opens k p straddr opdesc)
    (hloses : ¬LosesSlot k p straddr opdesc) (retvaddr : Nat) :
    createbuf im p straddr opdesc retvaddr k = .ok (-1, k) ∨
      createbuf im p straddr opdesc retvaddr k = .error (.panic "remap") := by
  by_cases hop : opdesc < 0 ∨ 1 < opdesc
  · exact .inl (createbuf_invalid hop)
  cases hattaches : attaches k straddr with
  | true =>
    obtain ⟨j, hfound, hj⟩ := attaches_iff.mp hattaches
    by_cases htaken : (k.ringbufs j).pidsRW (ringEndOf opdesc) ≠ 0 ∨ (k.ringbufs j).refcount < 0
    · exact .inl (createbuf_taken hop hfound hj htaken)
    have hend : ¬EndTaken k straddr opdesc := by
      rintro ⟨j', hfound', htaken'⟩
      obtain rfl : j = j' := Option.some.inj (hfound.symm.trans hfound')
      exact htaken htaken'
    rw [not_or, not_not, not_lt] at htaken
    cases hw : firstWindow k.ram.mem (k.proc p).pagetable with
    | none => exact .inl (createbuf_attach_none hop hfound hj htaken.1 htaken.2 hw)
    | some w =>
      have hmap := mapper_of_not_free (j := j) h hr htop hw
        (fun hfree => hopens ⟨hop, hslot, fun _ => hend, w, hw, hfree⟩) false
        ((k.ringbufs j).attaching (ringEndOf opdesc) (k.proc p).pid) fun _ => (hpages j).1
      exact .inr ((maps_attach hop hfound hj htaken.1 htaken.2).of_error hmap)
  | false =>
    obtain ⟨j, hj⟩ := exists_makeSlot hop hslot
    cases hw : firstWindow k.ram.mem (k.proc p).pagetable with
    | none => exact (hloses ⟨hop, hslot, hattaches, hw⟩).elim
    | some w =>
      have hmap := mapper_of_not_free (j := j) h hr htop hw
        (fun hfree => hopens ⟨hop, hslot, fun h => by simp [h] at hattaches, w, hw, hfree⟩) true
        ((k.ringbufs j).making straddr (ringEndOf opdesc) (k.proc p).pid) (by simp)
      exact .inr ((maps_make hop (val_eq_zero_of_attaches hattaches) hj).of_error hmap)

end Outcomes

end Kernel
end FastIpc
