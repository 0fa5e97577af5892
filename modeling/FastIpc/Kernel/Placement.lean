import FastIpc.Kernel.Rendezvous
import FastIpc.User.Calls

/-!
# Where a ring is placed

`processSpace_mapper` on an arbitrary process page table whose ten windows are in use or
empty as wholes.  It probes the first page of each window only, and maps thirty-three of its
thirty-four pages: sixteen data pages twice in a row, so that a block that runs over the end of
the ring is contiguous in user memory, and the page with the counters where the user library
expects it.  A window is in use if its pages are mapped for the user; but `walkaddr` reports a page
that is mapped to address 0, as a ring has if its page could not be allocated, as if it were not.

Main results:

- Theorem `processSpaceMapper_placed`: what the mapper does with the lowest empty window.
- Theorem `window_placement_iff`: when it does what it should.
-/

namespace FastIpc
namespace Kernel

open Foundation

/-! ## Windows of a page table -/

/-- No page of a window is mapped. -/
def WindowEmpty (m : Memory) (r : Nat) (w : Fin 10) : Prop :=
  ∀ i < 34, leaf m r (window w + i * pgSize) &&& pteV = 0

/-- The pages of a window that a ring takes are mapped for the user. -/
def WindowUsed (m : Memory) (r : Nat) (w : Fin 10) : Prop :=
  ∀ i < 33, leaf m r (window w + i * pgSize) &&& pteV ≠ 0 ∧
    leaf m r (window w + i * pgSize) &&& pteU ≠ 0

/-- A page table of a process: a tree in memory that shows the trap pages, whose windows are
empty or in use. -/
structure ProcessTable (im : Image) (own : Nat → Role) (roots : Nat → Prop) (s : Ram) (r : Nat) :
    Prop where
  owned : Owned im own roots s
  root : roots r
  trapframe : leaf s.mem r trapframeVA &&& pteV ≠ 0
  trampoline : leaf s.mem r trampolineVA &&& pteV ≠ 0
  windows : ∀ w, WindowEmpty s.mem r w ∨ WindowUsed s.mem r w

/-- Sixteen different data pages and a further page for the counters. -/
structure Ringbuf.Furnished (im : Image) (b : Ringbuf) : Prop where
  data : ∀ i, IsPage im (b.bufPA i)
  data_inj : Function.Injective b.bufPA
  book : IsPage im b.book
  book_ne : ∀ i, b.bufPA i ≠ b.book

namespace ProcessTable

variable {im : Image} {own : Nat → Role} {roots : Nat → Prop} {s : Ram} {r : Nat} {w : Fin 10}

theorem userPage_of_empty (hw : WindowEmpty s.mem r w) : userPage s.mem r (window w) = 0 := by
  have hleaf := hw 0 (by decide)
  rw [Nat.zero_mul, Nat.add_zero] at hleaf
  have hlt : window w < maxVA := lt_of_le_of_lt (Nat.le_add_right ..) (window_end_lt w)
  rw [userPage, if_neg (Nat.not_le.mpr hlt), if_pos hleaf]

theorem not_empty_of_used (hw : WindowUsed s.mem r w) : ¬WindowEmpty s.mem r w := fun hempty =>
  (hw 0 (by decide)).1 (hempty 0 (by decide))

variable (h : ProcessTable im own roots s r)
include h

/-- A window whose first page is found is in use. -/
theorem used_of_userPage (hne : userPage s.mem r (window w) ≠ 0) : WindowUsed s.mem r w :=
  (h.windows w).resolve_left fun hempty => hne (userPage_of_empty hempty)

/-- The page-table page of the windows is that of the trap pages. -/
theorem exists_top : ∃ nd, table s.mem r [255, 511] = some nd := by
  obtain ⟨nd, hnd⟩ := exists_table_of_valid h.trapframe
  refine ⟨nd, ?_⟩
  have hlow : mapStart ≤ trapframeVA := by decide
  obtain ⟨h2, h1⟩ := px_of_window hlow (by decide)
  rwa [h2, h1] at hnd

/-- The windows before the one that is taken for the first free one are in use, and all are if
there is none. -/
theorem used_of_firstWindow :
    (firstWindow s.mem r = none → ∀ w, WindowUsed s.mem r w) ∧
      ∀ w, firstWindow s.mem r = some w → ∀ w' < w, WindowUsed s.mem r w' := by
  constructor
  · intro hnone w
    have hprobe := List.find?_eq_none.mp hnone w (List.mem_finRange w)
    exact h.used_of_userPage (by simpa using hprobe)
  · intro w hw w' hlt
    obtain ⟨-, i, hi, hget, hearlier⟩ := List.find?_eq_some_iff_getElem.mp hw
    have hval : i = w.val := by simpa using congrArg Fin.val hget
    have hlater := hearlier w'.val (by rw [hval]; exact hlt)
    exact h.used_of_userPage (by simpa using hlater)

end ProcessTable

/-- The page tables of the machine are of this kind, also if a ring lacks a page. -/
theorem KernelInv.processTable {im : Image} {own : Nat → Role} {holds : List Holding}
    {k : KernelState} {p : ProcId} (h : KernelInv im own holds k) (hp : (k.proc p).pagetable ≠ 0) :
    ProcessTable im own (IsRoot k.proc) k.ram (k.proc p).pagetable where
  owned := h.spaces.owned
  root := Spaces.isRoot hp
  trapframe := by
    rw [(h.spaces.space p hp).trapframe]
    exact mkPte_valid (by decide)
  trampoline := by
    rw [(h.spaces.space p hp).trampoline]
    exact mkPte_valid (by decide)
  windows w := by
    cases hat : heldAt holds p w with
    | none =>
      refine .inl fun i hi => ?_
      rw [h.spaces.leaf_of_none hp hat hi, Nat.zero_and]
    | some a =>
      obtain ⟨ha, rfl, rfl⟩ := mem_of_heldAt hat
      refine .inr fun i hi => ?_
      rw [h.spaces.leaf_of_mem ha hi]
      exact ⟨mkPte_valid ringPerm_lt, ringPte_user _⟩

/-! ## The mapper -/

/-- A ring is shown in a window, and nothing else has changed in the page table. -/
structure Placed (r : Nat) (j : Slot) (w : Fin 10) (k k' : KernelState) : Prop where
  vabuf : (k'.ringbufs j).vabuf = window w
  /-- The first thirty-three pages are readable and writable for the user. -/
  shown : ∀ i < 33, leaf k'.ram.mem r (window w + i * pgSize) =
    mkPte ((k'.ringbufs j).pageAt i) ringPerm
  frame : ∀ va < maxVA, ¬(window w ≤ va ∧ va < window w + 33 * pgSize) →
    leaf k'.ram.mem r va = leaf k.ram.mem r va
  /-- The bytes of the ring appear twice. -/
  mirrored : ∀ i < User.bufSize, userAddr k'.ram.mem r (window w + User.bufSize + i) =
    userAddr k'.ram.mem r (window w + i)
  /-- The data are accessible. -/
  accessible : ∀ i < 33, userPage k'.ram.mem r (window w + i * pgSize) ≠ 0
  /-- The counters have a page of their own, where the user library expects them. -/
  book : ∀ i < 16, userPage k'.ram.mem r (window w + User.bookOffset) ≠
    userPage k'.ram.mem r (window w + i * pgSize)

section Mapper

variable {im : Image} {own own' : Nat → Role} {roots : Nat → Prop} {r : Nat} {w : Fin 10}
  {k k' : KernelState} {p : ProcId} {j : Slot} {newmap : Bool}

/-- The pages of a ring in use are different pages. -/
theorem Ringbuf.furnished_of_roles {b : Ringbuf} {s : Ram} (h : Owned im own roots s)
    (hdata : ∀ i, own (b.bufPA i) = .ringData j i) (hbook : own b.book = .ringBook j) :
    b.Furnished im where
  data i := h.page _ (by simp [hdata i])
  data_inj i i' heq := by
    have hrole := hdata i
    rw [heq, hdata i'] at hrole
    simp only [Role.ringData.injEq, true_and] at hrole
    exact Fin.ext hrole.symm
  book := h.page _ (by simp [hbook])
  book_ne i heq := by
    have hrole := hdata i
    rw [heq, hbook] at hrole
    cases hrole

theorem RingMapped.furnished (h : RingMapped im roots r j newmap (window w) own own' k k')
    (hsupply : newmap = true → k.ram.Supplies (ringbufSize + 1))
    (hslot : newmap = false → (k.ringbufs j).Furnished im) : (k'.ringbufs j).Furnished im := by
  cases newmap with
  | false =>
    obtain ⟨hdata, hbook⟩ := h.old rfl
    obtain ⟨hold, hinj, hbookPage, hne⟩ := hslot rfl
    rw [← hdata] at hold hinj hne
    rw [← hbook] at hbookPage hne
    exact ⟨hold, hinj, hbookPage, hne⟩
  | true =>
    -- The pages come from the allocator, which gives out each page once.
    obtain ⟨hdata, hbook⟩ := h.supply rfl (hsupply rfl)
    exact Ringbuf.furnished_of_roles h.owned
      (fun i => ((h.data rfl i).resolve_left (hdata i)).2) ((h.book rfl).resolve_left hbook).2

theorem Ringbuf.Furnished.pageAt {b : Ringbuf} (h : b.Furnished im) (i : Nat) :
    IsPage im (b.pageAt i) := by
  unfold Ringbuf.pageAt
  split
  next => exact h.data _
  next => exact h.book

theorem RingMapped.userPage_eq (h : RingMapped im roots r j newmap (window w) own own' k k')
    (hr : roots r) (hb : (k'.ringbufs j).Furnished im) {va i : Nat} (hi : i < 33)
    (hva : va / pgSize = window w / pgSize + i) :
    userPage k'.ram.mem r va = (k'.ringbufs j).pageAt i := by
  have haligned := (window_bounds w).1
  have hend := window_end_lt w
  have hin : window w ≤ va ∧ va < window w + 33 * pgSize ∧ (va - window w) / pgSize = i := by
    unfold pgSize at *
    omega
  have hleaf := h.leaf_eq r va hr (lt_treeVA (hin.2.1.trans hend))
  rw [if_pos ⟨rfl, hin.1, hin.2.1⟩, hin.2.2] at hleaf
  rw [userPage_of_ring (hin.2.1.trans hend) hleaf,
    pte2pa_mkPte ringPerm_lt (hb.pageAt i).aligned (hb.pageAt i).lt_pow]

/-- The page of an address a distance after an aligned one. -/
theorem roundDown_div {start : Nat} (haligned : start % pgSize = 0) (i : Nat) :
    pgRoundDown (start + i) / pgSize = start / pgSize + i / pgSize := by
  unfold pgRoundDown pgSize at *
  omega

/-- The second copy of the data is sixteen pages after the first. -/
theorem second_copy (start : Nat) {i : Nat} (hi : i < User.bufSize) :
    i / pgSize < 16 ∧ (User.bufSize + i) / pgSize = i / pgSize + 16 ∧
      (start + User.bufSize + i) % pgSize = (start + i) % pgSize := by
  unfold User.bufSize at *
  unfold pgSize
  omega

/-- What the mapper does with a ring and the lowest empty window. -/
theorem processSpaceMapper_placed (h : ProcessTable im own roots k.ram (k.proc p).pagetable)
    (hsupply : newmap = true → k.ram.Supplies (ringbufSize + 1))
    (hslot : newmap = false → (k.ringbufs j).Furnished im)
    (hfirst : firstWindow k.ram.mem (k.proc p).pagetable = some w)
    (hw : WindowEmpty k.ram.mem (k.proc p).pagetable w) :
    ∃ k', processSpaceMapper im p j newmap k = .ok (0, k') ∧
      Placed (k.proc p).pagetable j w k k' := by
  obtain ⟨nd, htop⟩ := h.exists_top
  obtain ⟨k', own', hrun, hmapped⟩ := processSpaceMapper_of_empty (j := j) h.owned h.root rfl htop
    hfirst (fun i hi => hw i (by omega))
    (fun hnew => ⟨fun i => ((hslot hnew).data i).lt_pow, (hslot hnew).book.lt_pow⟩)
  have hb := hmapped.furnished hsupply hslot
  obtain ⟨haligned, -, hend⟩ := window_bounds w
  have htop : trapframeVA < maxVA := by decide
  have hpage : ∀ i < 33, userPage k'.ram.mem (k.proc p).pagetable (window w + i * pgSize) =
      (k'.ringbufs j).pageAt i := fun i hi =>
    hmapped.userPage_eq h.root hb hi (Nat.add_mul_div_right _ _ (by decide))
  refine ⟨k', hrun, ⟨?_, fun i hi => ?_, fun va hva hout => ?_, fun i hi => ?_, fun i hi => ?_,
    fun i hi => ?_⟩⟩
  · rw [hmapped.slot]
  · have hin : window w ≤ window w + i * pgSize ∧ window w + i * pgSize < window w + 33 * pgSize ∧
        (window w + i * pgSize - window w) / pgSize = i := by
      unfold pgSize
      omega
    rw [hmapped.leaf_eq _ _ h.root (lt_treeVA ((hin.2.1.trans (window_end_lt w)))),
      if_pos ⟨rfl, hin.1, hin.2.1⟩, hin.2.2]
  · rw [hmapped.leaf_eq _ _ h.root (lt_treeVA hva), if_neg fun hin => hout hin.2]
  · -- Page `i` of the window and page `i + 16` show the same data page.
    obtain ⟨hlt, hsecond, hoffset⟩ := second_copy (window w) hi
    have hsame : (k'.ringbufs j).pageAt (i / pgSize + 16) = (k'.ringbufs j).pageAt (i / pgSize) := by
      unfold Ringbuf.pageAt dataIndex ringbufSize
      rw [if_pos (by omega), if_pos (by omega)]
      congr 2
      omega
    have hfirst := roundDown_div haligned i
    have hcopy := roundDown_div haligned (User.bufSize + i)
    rw [hsecond, ← Nat.add_assoc] at hcopy
    rw [userAddr, userAddr, hmapped.userPage_eq h.root hb (by omega) hfirst,
      hmapped.userPage_eq h.root hb (by omega) hcopy, hsame, hoffset]
  · rw [hpage i hi]
    exact (hb.pageAt i).pos.ne'
  · have hbook := hpage 32 (by decide)
    rw [show window w + User.bookOffset = window w + 32 * pgSize from rfl, hbook,
      hpage i (by omega)]
    have hdata : (k'.ringbufs j).pageAt i = (k'.ringbufs j).bufPA (dataIndex i) :=
      if_pos (by unfold ringbufSize; omega)
    rw [hdata]
    exact (hb.book_ne _).symm

/-- `processSpace_mapper` returns -1, and changes nothing, exactly if all windows are in use;
otherwise it places the ring in the lowest empty window. -/
def PlacesRing (im : Image) (p : ProcId) (j : Slot) (newmap : Bool) (k : KernelState) : Prop :=
  ∃ res k', processSpaceMapper im p j newmap k = .ok (res, k') ∧
    (res = -1 ↔ ∀ w, WindowUsed k.ram.mem (k.proc p).pagetable w) ∧ (res = -1 → k' = k) ∧
    (res ≠ -1 → res = 0 ∧ ∃ w, WindowEmpty k.ram.mem (k.proc p).pagetable w ∧
      (∀ w' < w, WindowUsed k.ram.mem (k.proc p).pagetable w') ∧
      Placed (k.proc p).pagetable j w k k')

/-- On a page table whose windows are empty or in use, with all allocations succeeding, and for
a ring that is new or has its seventeen pages: the mapper does so if and only if the first window
whose first page `walkaddr` reports as 0, if there is one, is empty. -/
theorem window_placement_iff (h : ProcessTable im own roots k.ram (k.proc p).pagetable)
    (hsupply : newmap = true → k.ram.Supplies (ringbufSize + 1))
    (hslot : newmap = false → (k.ringbufs j).Furnished im) :
    PlacesRing im p j newmap k ↔ ∀ w, firstWindow k.ram.mem (k.proc p).pagetable = some w →
      WindowEmpty k.ram.mem (k.proc p).pagetable w := by
  obtain ⟨hall, hlower⟩ := h.used_of_firstWindow
  constructor
  · rintro ⟨res, k', hrun, -⟩ w hw
    by_contra hne
    have hused := (h.windows w).resolve_left hne
    obtain ⟨nd, htop⟩ := h.exists_top
    have hpanic : processSpaceMapper im p j newmap k = .error (.panic "remap") :=
      processSpaceMapper_remap (i := 0) h.owned h.root rfl htop hw (by decide) (by simp)
        (hused 0 (by decide)).1 (by simp)
    rw [hrun] at hpanic
    cases hpanic
  · intro hempty
    cases hfirst : firstWindow k.ram.mem (k.proc p).pagetable with
    | none =>
      exact ⟨-1, k, processSpaceMapper_none rfl hfirst, iff_of_true rfl (hall hfirst), fun _ => rfl,
        fun hne => (hne rfl).elim⟩
    | some w =>
      have hw := hempty w hfirst
      obtain ⟨k', hrun, hplaced⟩ := processSpaceMapper_placed h hsupply hslot hfirst hw
      refine ⟨0, k', hrun, iff_of_false (by decide) fun hused => ?_,
        fun hzero => absurd hzero (by decide), fun _ => ⟨rfl, w, hw, hlower w hfirst, hplaced⟩⟩
      exact ProcessTable.not_empty_of_used (hused w) hw

end Mapper

theorem parentEnd_shown {own : Nat → Role} {k : KernelState}
    (h : KernelInv smallImage own [parentEnd] k) :
    leaf k.ram.mem (k.proc 0).pagetable (window 0 + 0 * pgSize) &&& pteV ≠ 0 := by
  have hleaf : leaf k.ram.mem (k.proc 0).pagetable (window 0 + 0 * pgSize) = _ :=
    h.spaces.leaf_of_mem (a := parentEnd) (by simp) (by decide)
  rw [hleaf]
  exact mkPte_valid ringPerm_lt

/-- The parent has a ring in its first window, and attaches to it once more: the ring is shown in
the second window, too. -/
theorem window_placement_attached : ∃ k k',
    perform smallImage smallFork ⟨0, .createbuf ringName 0 0, []⟩ = some (some 1, k) ∧
    processSpaceMapper smallImage 0 0 false k = .ok (0, k') ∧
    Placed (k.proc 0).pagetable 0 1 k k' := by
  obtain ⟨own, k, own', -, hrun, -, ho, hinv⟩ := smallFork_make 0 []
  have hbacked : (k.ringbufs 0).Backed := ho.supply rfl smallFork_supplies
  have hp : (k.proc 0).pagetable ≠ 0 := hinv.pagetable_ne_zero (by
    rw [ho.proc]
    exact smallFork_procs.1)
  have hpages := hinv.spaces.held_pages parentEnd (by simp)
  have hfurnished : (k.ringbufs 0).Furnished smallImage :=
    Ringbuf.furnished_of_roles hinv.spaces.owned (fun i => (hpages.data i).resolve_left (hbacked.1 i))
      (hpages.book.resolve_left hbacked.2)
  have hempty : ∀ w, w ≠ 0 → WindowEmpty k.ram.mem (k.proc 0).pagetable w := fun w hw i hi => by
    rw [hinv.spaces.leaf_of_none hp (by simp [heldAt, parentEnd, hw.symm]) hi, Nat.zero_and]
  have hnone : heldAt [parentEnd] 0 0 ≠ none := by simp [heldAt, parentEnd]
  have hall : AllBacked [parentEnd] k := fun a ha => by
    rw [List.mem_singleton.mp ha]
    exact hbacked
  have hplaces : PlacesRing smallImage 0 0 false k := (window_placement_iff
    (hinv.processTable hp) (by simp) fun _ => hfurnished).mpr fun w hw => hempty w (by
      rintro rfl
      exact hnone (hinv.heldAt_firstWindow hall hw))
  obtain ⟨res, k', hmap, hiff, -, hplaced⟩ := hplaces
  have hfree := fun hused => ProcessTable.not_empty_of_used hused (hempty 1 (by decide))
  obtain ⟨rfl, w, hw, hlower, hplaced⟩ := hplaced fun hres => hfree (hiff.mp hres 1)
  obtain rfl : w = 1 := by
    have hzero : w ≠ 0 := by
      rintro rfl
      exact parentEnd_shown hinv (hw 0 (by decide))
    have hone : ¬1 < w := fun hlt => hfree (hlower 1 hlt)
    omega
  exact ⟨k, k', hrun, hmap, hplaced⟩

/-- The parent has opened a ring while no page could be allocated, so that its first window shows
the page 0.  Now there are pages, the window is taken for a free one, and the machine stops. -/
theorem window_placement_remap : ∃ own k,
    perform smallImage smallFork ⟨0, .createbuf ringName 0 0, .replicate 17 true⟩ =
      some (some 1, k) ∧
    ProcessTable smallImage own (IsRoot k.proc) (k.withFails []).ram (k.proc 0).pagetable ∧
    (k.withFails []).ram.Supplies 17 ∧
    processSpaceMapper smallImage 0 1 true (k.withFails []) = .error (.panic "remap") := by
  obtain ⟨own, k, own', -, hrun, -, ho, hinv⟩ := smallFork_make 0 (.replicate 17 true)
  have hok : ((perform smallImage smallFork ⟨0, .createbuf ringName 0 0, .replicate 17 true⟩).map
      fun done => decide (Threaded done.2.ram.mem done.2.ram.freelist ((List.range 86).map fun i =>
        smallImage.endAddr + (14 + i) * pgSize) ∧
        userPage done.2.ram.mem (done.2.proc 0).pagetable (window 0) = 0)) = some true := by
    decide +kernel
  rw [hrun] at hok
  obtain ⟨hlist, hnull⟩ := of_decide_eq_true (Option.some.inj hok)
  have hp : (k.proc 0).pagetable ≠ 0 := hinv.pagetable_ne_zero (by
    rw [ho.proc]
    exact smallFork_procs.1)
  have htable := (hinv.withFails []).processTable hp
  obtain ⟨nd, htop⟩ := htable.exists_top
  refine ⟨own', k, hrun, htable, ⟨by simp [KernelState.withFails], _, hlist, by decide⟩, ?_⟩
  have hfirst : firstWindow k.ram.mem (k.proc 0).pagetable = some 0 := by
    rw [firstWindow, show List.finRange 10 = 0 :: (List.finRange 10).tail from rfl,
      List.find?_cons_of_pos (by simpa using hnull)]
  exact processSpaceMapper_remap (i := 0) htable.owned htable.root rfl htop hfirst (by decide)
    (by simp) (parentEnd_shown (hinv.withFails [])) (by simp)

end Kernel
end FastIpc
